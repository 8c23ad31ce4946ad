import PropSat.Proofs.Formula.Subformulas
import PropSat.Proofs.NormalForm.Stacks

/-!
Where negations stand once they have been moved down. Either reading of a formula takes the names in the order in
which they occur, whatever connectives it turns into others on the way, and negates nothing else; a formula that
negates nothing else has itself for its positive reading (`nnf_negatesNames`).
-/

namespace PropSat.Formula

theorem nnf_not_var (name : String) : (not (var name)).nnf = .not (.var name) := by
  rw [nnf, readings_not, readings_var]

theorem nnf_binary (op : Connective) (left right : Formula) :
    (binary op left right).nnf = .binary op left.nnf right.nnf :=
  readings_of_binary op left right false

theorem names_readings (f : Formula) (negated : Bool) : (f.readings.of negated).names = f.names := by
  induction f generalizing negated with
  | var name =>
    rw [readings_var]
    cases negated <;> rfl
  | not arg ih =>
    rw [readings_of_not, ih]
    rfl
  | binary op left right ihl ihr => rw [readings_of_binary, names, ihl, ihr, names]

theorem nnf_names (f : Formula) : f.nnf.names = f.names := names_readings f false

theorem negatesNames_readings (f : Formula) (negated : Bool) :
    (f.readings.of negated).Everywhere NegatesName := by
  induction f generalizing negated with
  | var name =>
    rw [readings_var]
    cases negated with
    | false => exact negatesNames_var name
    | true => exact negatesNames_not.2 ⟨name, rfl⟩
  | not arg ih =>
    rw [readings_of_not]
    exact ih (!negated)
  | binary op left right ihl ihr =>
    rw [readings_of_binary, negatesNames_binary]
    exact ⟨ihl _, ihr _⟩

theorem nnf_eq {f : Formula} (only : f.Everywhere NegatesName) : f.nnf = f := by
  induction f with
  | var name => rw [nnf, readings_var]
  | not arg ih =>
    obtain ⟨name, rfl⟩ := negatesNames_not.1 only
    exact nnf_not_var name
  | binary op left right ihl ihr =>
    obtain ⟨lefts, rights⟩ := negatesNames_binary.1 only
    rw [nnf_binary, ihl lefts, ihr rights]

/-- Moving negations down comes to an end with a formula in which they stand over names only. Every name occurs in
it as often and in the same places from left to right as before. Just the formulas that negate nothing but names
are left as they are, so doing it again changes nothing. -/
theorem nnf_negatesNames (f : Formula) :
    f.nnf? = some f.nnf ∧
    f.nnf.Everywhere NegatesName ∧
    f.nnf.names = f.names ∧
    (f.nnf = f ↔ f.Everywhere NegatesName) ∧
    f.nnf.nnf = f.nnf := by
  have only : f.nnf.Everywhere NegatesName := negatesNames_readings f false
  refine ⟨nnf?_eq f, only, nnf_names f, ⟨?_, nnf_eq⟩, nnf_eq only⟩
  intro kept
  rwa [kept] at only

end PropSat.Formula
