import PropSat.Clause.Basic

/-!
Assignments as lists of values in the order of the variables. A list may be shorter than the number of
variables; then it decides the first of them and leaves the others open. The total assignments that go
on from such a list are `completions`, in lexicographic order with false before true.
-/

namespace PropSat

namespace Literal

def holds (values : List Bool) (l : Literal) : Bool := values[l.var]? == some (!l.isNegative)

def fails (values : List Bool) (l : Literal) : Bool := values[l.var]? == some l.isNegative

theorem holds_eq_not_fails {values : List Bool} {l : Literal} (known : l.var < values.length) :
    l.holds values = !l.fails values := by
  rw [holds, fails, List.getElem?_eq_getElem known]
  cases values[l.var] <;> cases l.isNegative <;> rfl

theorem fails_append {values : List Bool} {l : Literal} (fails : l.fails values) (more : List Bool) :
    l.fails (values ++ more) := by
  rw [Literal.fails, beq_iff_eq] at *
  rw [List.getElem?_append_left (List.getElem?_eq_some_iff.1 fails).1]
  exact fails

end Literal

def Clause.holds (values : List Bool) (c : Clause) : Bool := c.literals.any (·.holds values)

def Clause.fails (values : List Bool) (c : Clause) : Bool := c.literals.all (·.fails values)

theorem Clause.holds_eq_not_fails {values : List Bool} {c : Clause}
    (known : ∀ l ∈ c.literals, l.var < values.length) : c.holds values = !c.fails values := by
  rw [holds, fails, List.not_all_eq_any_not, Bool.eq_iff_iff, List.any_eq_true, List.any_eq_true]
  apply exists_congr
  intro l
  apply and_congr_right
  intro own
  rw [Literal.holds_eq_not_fails (known l own)]

/-- No literal of a clause names a variable past the last. -/
def InRange (vars : Nat) (clauses : Array Clause) : Prop :=
  ∀ c ∈ clauses, ∀ l ∈ c.literals, l.var < vars

/-- Every clause has a literal that is true. -/
def satisfied (clauses : Array Clause) (values : List Bool) : Bool := clauses.all (·.holds values)

/-- Some clause has only literals that are false. -/
def violated (clauses : Array Clause) (values : List Bool) : Bool := clauses.any (·.fails values)

theorem satisfied_iff {clauses : Array Clause} {values : List Bool} :
    satisfied clauses values = true ↔
      ∀ c ∈ clauses, ∃ l ∈ c.literals, values[l.var]? = some (!l.isNegative) := by
  simp [satisfied, ← Array.all_toList, Clause.holds, Literal.holds]

theorem violated_iff {clauses : Array Clause} {values : List Bool} :
    violated clauses values = true ↔
      ∃ c ∈ clauses, ∀ l ∈ c.literals, values[l.var]? = some l.isNegative := by
  simp [violated, ← Array.any_toList, Clause.fails, Literal.fails]

theorem violated_append {clauses : Array Clause} {values : List Bool}
    (violation : violated clauses values) (more : List Bool) : violated clauses (values ++ more) := by
  obtain ⟨c, member, fails⟩ := violated_iff.1 violation
  rw [violated_iff]
  have still : ∀ l ∈ c.literals, (values ++ more)[l.var]? = some l.isNegative := by
    intro l own
    have before : l.fails values = true := by rw [Literal.fails, fails l own, beq_self_eq_true]
    exact beq_iff_eq.1 (Literal.fails_append before more)
  exact ⟨c, member, still⟩

/-- When every variable is decided a clause that is not violated is satisfied. -/
theorem satisfied_eq_not_violated {clauses : Array Clause} {values : List Bool}
    (known : InRange values.length clauses) : satisfied clauses values = !violated clauses values := by
  rw [satisfied, violated, ← Array.all_toList, ← Array.any_toList, List.not_any_eq_all_not,
    Bool.eq_iff_iff, List.all_eq_true, List.all_eq_true]
  apply forall₂_congr
  intro c member
  rw [Clause.holds_eq_not_fails (known c (Array.mem_toList_iff.1 member))]

/-- All ways to decide `k` more variables. -/
def completions : Nat → List Bool → List (List Bool)
  | 0, values => [values]
  | k + 1, values => completions k (values ++ [false]) ++ completions k (values ++ [true])

theorem mem_completions {k : Nat} {values total : List Bool} :
    total ∈ completions k values ↔ ∃ more, more.length = k ∧ total = values ++ more := by
  induction k generalizing values with
  | zero => simp [completions]
  | succ k ih =>
    rw [completions, List.mem_append, ih, ih]
    constructor
    · rintro (⟨more, length, rfl⟩ | ⟨more, length, rfl⟩)
      · exact ⟨false :: more, by simp [length], by simp⟩
      · exact ⟨true :: more, by simp [length], by simp⟩
    · rintro ⟨more, length, rfl⟩
      cases more with
      | nil => simp at length
      | cons value rest =>
        have shorter : rest.length = k := by simpa using length
        cases value with
        | false => exact .inl ⟨rest, shorter, by simp⟩
        | true => exact .inr ⟨rest, shorter, by simp⟩

theorem mem_completions_nil {k : Nat} {total : List Bool} :
    total ∈ completions k [] ↔ total.length = k := by
  rw [mem_completions]
  constructor
  · rintro ⟨more, length, rfl⟩
    exact length
  · intro length
    exact ⟨total, length, rfl⟩

/-- The first variable on which two assignments differ is false in the earlier one. -/
def Earlier (first second : List Bool) : Prop :=
  List.Lex (fun a b => a = false ∧ b = true) first second

theorem Earlier.of_split (values first second : List Bool) :
    Earlier (values ++ false :: first) (values ++ true :: second) := by
  induction values with
  | nil => exact .rel ⟨rfl, rfl⟩
  | cons _ _ ih => exact .cons ih

theorem Earlier.irrefl (values : List Bool) : ¬Earlier values values :=
  List.lex_irrefl (by simp) values

theorem Earlier.asymm {first second : List Bool} (earlier : Earlier first second) :
    ¬Earlier second first :=
  List.lex_asymm (by simp) earlier

theorem pairwise_completions (k : Nat) (values : List Bool) :
    (completions k values).Pairwise Earlier := by
  induction k generalizing values with
  | zero => simp [completions]
  | succ k ih =>
    rw [completions, List.pairwise_append]
    refine ⟨ih _, ih _, ?_⟩
    intro first inFirst second inSecond
    obtain ⟨more, -, rfl⟩ := mem_completions.1 inFirst
    obtain ⟨other, -, rfl⟩ := mem_completions.1 inSecond
    simpa using Earlier.of_split values more other

end PropSat
