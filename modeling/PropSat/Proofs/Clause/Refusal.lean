import PropSat.Proofs.Clause.Reading
import PropSat.Proofs.NormalForm.Recognition
import PropSat.Proofs.Solver.Models

/-!
Which formulas are refused, and on account of which part. The parts of a formula are what stands below
its topmost `and`s and, in each conjunct, below the topmost `or`s; the leftmost part that is no literal is
the culprit. So reading accepts just what the recogniser calls conjunctive (`refused_leftmost`).
-/

namespace PropSat

namespace Formula

/-- What stands below the topmost `or`s, from left to right. -/
def disjunctiveParts : Formula → List Formula
  | .or left right => left.disjunctiveParts ++ right.disjunctiveParts
  | f => [f]

/-- What stands below the topmost `and`s and, in each conjunct, below its topmost `or`s. -/
def parts : Formula → List Formula
  | .and left right => left.parts ++ right.parts
  | f => f.disjunctiveParts

theorem disjunctiveParts_eq (f : Formula) : f.disjunctiveParts = f.spine .or := by
  induction f with
  | var name => rw [spine_var]; rfl
  | not arg _ => rw [spine_not]; rfl
  | binary op left right ihl ihr =>
    cases op with
    | or => rw [disjunctiveParts, ihl, ihr, spine_binary_self]
    | and | implies | iff => rw [spine_binary_of_ne Connective.noConfusion]; rfl

theorem parts_eq (f : Formula) : f.parts = (f.spine .and).flatMap (spine .or) := by
  induction f with
  | var name => rw [spine_var, List.flatMap_singleton, spine_var]; rfl
  | not arg _ => rw [spine_not, List.flatMap_singleton, spine_not]; rfl
  | binary op left right ihl ihr =>
    cases op with
    | and => rw [parts, ihl, ihr, spine_binary_self, List.flatMap_append]
    | or | implies | iff =>
      rw [spine_binary_of_ne Connective.noConfusion, List.flatMap_singleton, ← disjunctiveParts_eq]
      rfl

/-- The error that a part causes where a literal should be. -/
def refusal : Formula → Option NotCnf
  | .var _ => none
  | .not (.var _) => none
  | f => some ⟨f⟩

theorem refusal_eq_none {f : Formula} : f.refusal = none ↔ IsLiteral f := by
  unfold refusal
  split
  case h_1 name => exact iff_of_true rfl (.var name)
  case h_2 name => exact iff_of_true rfl (.not name)
  case h_3 f noVar noNot =>
    refine iff_of_false (Option.some_ne_none _) ?_
    rintro (name | name)
    · exact noVar name rfl
    · exact noNot name rfl

theorem refusal_eq_some {f : Formula} {error : NotCnf} :
    f.refusal = some error ↔ ¬IsLiteral f ∧ error = ⟨f⟩ := by
  rw [← refusal_eq_none]
  unfold refusal
  split <;> simp [eq_comm]

end Formula

namespace Encoding

open Formula

/-- A run fails with the error of the first element that is refused, whatever the state is by then. -/
theorem foldlM_eq_error {ε α σ : Type} {step : σ → α → Except ε σ} {refuse : α → Option ε}
    (each : ∀ s x error, step s x = .error error ↔ refuse x = some error) {xs : List α} {s : σ}
    {error : ε} : xs.foldlM step s = .error error ↔ xs.findSome? refuse = some error := by
  induction xs generalizing s with
  | nil => simp [pure, Except.pure]
  | cons x rest ih =>
    rw [List.foldlM_cons, List.findSome?_cons]
    cases taken : step s x with
    | error first =>
      rw [(each s x first).1 taken]
      simp [bind, Except.bind]
    | ok s' =>
      have accepted : refuse x = none := by
        rw [Option.eq_none_iff_forall_ne_some]
        intro error refused
        rw [(each s x error).2 refused] at taken
        cases taken
      rw [accepted]
      exact ih

theorem findSome?_flatMap {α β γ : Type} (inner : α → List β) (refuse : β → Option γ) (xs : List α) :
    (xs.flatMap inner).findSome? refuse = xs.findSome? fun x => (inner x).findSome? refuse := by
  induction xs with
  | nil => rfl
  | cons x rest ih =>
    rw [List.flatMap_cons, List.findSome?_append, List.findSome?_cons, ih]
    cases (inner x).findSome? refuse <;> rfl

variable {f conjunct : Formula} {error : NotCnf}

theorem addLiteral_eq_error {s : List Literal × NameTable} :
    addLiteral s f = .error error ↔ f.refusal = some error := by
  obtain ⟨literals, table⟩ := s
  cases f with
  | var name => simp [addLiteral, refusal]
  | not arg => cases arg <;> simp [addLiteral, refusal]
  | binary op left right => simp [addLiteral, refusal]

theorem addClause_eq_error {e : Encoding} :
    addClause e conjunct = .error error ↔ (conjunct.spine .or).findSome? refusal = some error := by
  have each : ∀ s f error, addLiteral s f = .error error ↔ f.refusal = some error :=
    fun _ _ _ => addLiteral_eq_error
  have all : (conjunct.spine .or).foldlM addLiteral ([], e.table) = .error error ↔
      (conjunct.spine .or).findSome? refusal = some error := foldlM_eq_error each
  rw [← all, addClause]
  cases (conjunct.spine .or).foldlM addLiteral ([], e.table) <;> simp [bind, Except.bind, pure, Except.pure]

theorem ofFormula_eq_error : ofFormula f = .error error ↔ f.parts.findSome? refusal = some error := by
  have each : ∀ e conjunct error, addClause e conjunct = .error error ↔
      (conjunct.spine .or).findSome? refusal = some error := fun _ _ _ => addClause_eq_error
  rw [parts_eq, findSome?_flatMap]
  exact foldlM_eq_error each

theorem ofFormula_isOk_iff : (∃ e, ofFormula f = .ok e) ↔ f.isCnf = true := by
  rw [isCnf_iff]
  constructor
  · rintro ⟨e, read⟩
    exact conjunctive_of_ofFormula read
  · intro form
    obtain ⟨e, read, -⟩ := ofFormula_ok form
    exact ⟨e, read⟩

end Encoding

namespace Solver

open Formula

theorem ofCnf_isOk_iff {f : Formula} : (∃ s, ofCnf f = .ok s) ↔ f.isCnf = true := by
  constructor
  · rintro ⟨s, made⟩
    obtain ⟨e, read, -⟩ := bind_eq_ok.1 made
    rw [← Encoding.ofFormula_isOk_iff]
    cases known : Encoding.ofFormula f with
    | ok e => exact ⟨e, rfl⟩
    | error error =>
      rw [known] at read
      cases read
  · intro form
    obtain ⟨s, _, made, -⟩ := ofCnf_ok (isCnf_iff.1 form)
    exact ⟨s, made⟩

/-- A formula is read as clauses, and a solver made for it, just when it is recognised as conjunctive. A
refusal of either carries the text of the leftmost of its parts that is no literal. -/
theorem refused_leftmost (f : Formula) :
    ((∃ e, Encoding.ofFormula f = .ok e) ↔ f.isCnf = true) ∧
    ((∃ s, ofCnf f = .ok s) ↔ f.isCnf = true) ∧
    (∀ error, Encoding.ofFormula f = .error error ↔ ∃ before culprit after,
      f.parts = before ++ culprit :: after ∧ (∀ l ∈ before, IsLiteral l) ∧ ¬IsLiteral culprit ∧
        error = ⟨culprit⟩ ∧ error.formula = culprit.text) ∧
    (∀ error, ofCnf f = .error error ↔
      ∃ refused, Encoding.ofFormula f = .error refused ∧ error = .notCnf refused) := by
  refine ⟨Encoding.ofFormula_isOk_iff, ofCnf_isOk_iff, ?_, ?_⟩
  · intro error
    rw [Encoding.ofFormula_eq_error, List.findSome?_eq_some_iff]
    apply exists_congr
    intro before
    apply exists_congr
    intro culprit
    apply exists_congr
    intro after
    simp only [refusal_eq_none, refusal_eq_some]
    constructor
    · rintro ⟨split, ⟨other, rfl⟩, literals⟩
      exact ⟨split, literals, other, rfl, rfl⟩
    · rintro ⟨split, literals, other, rfl, -⟩
      exact ⟨split, ⟨other, rfl⟩, literals⟩
  · intro error
    cases read : Encoding.ofFormula f with
    | error refused => simp [ofCnf, read, Except.mapError, bind, Except.bind, eq_comm]
    | ok e =>
      obtain ⟨s, made⟩ := ofCnf_isOk_iff.2 (Encoding.ofFormula_isOk_iff.1 ⟨e, read⟩)
      simp [made]

end Solver

end PropSat
