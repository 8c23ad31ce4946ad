import PropSat.Proofs.NormalForm.Stacks
import PropSat.Proofs.Solver.Conversion

/-!
How many clauses a formula comes to. The number is found on the formula itself, beside the number for its negation:
an `and` adds what an `or` multiplies, and where a connective is negated the two change places. Doing without `iff`
and `if` leaves both numbers as they are, moving negations down does so once there is no `iff`, and the distribution
has one conjunct for each clause counted (`clauseCount_ofFormula`).
-/

namespace PropSat

/-- The number of clauses of a formula and that of its negation. -/
structure ClauseCounts where
  positive : Nat
  negative : Nat

def ClauseCounts.of (counts : ClauseCounts) (negated : Bool) : ClauseCounts :=
  if negated then ⟨counts.negative, counts.positive⟩ else counts

theorem ClauseCounts.of_of_true (counts : ClauseCounts) (negated : Bool) :
    (counts.of true).of negated = counts.of (!negated) := by
  cases negated <;> rfl

namespace Connective

/-- What a connective makes of the numbers of its operands. -/
def clauseCounts : Connective → ClauseCounts → ClauseCounts → ClauseCounts
  | .and, l, r => ⟨l.positive + r.positive, l.negative * r.negative⟩
  | .or, l, r => ⟨l.positive * r.positive, l.negative + r.negative⟩
  | .implies, l, r => ⟨l.negative * r.positive, l.positive + r.negative⟩
  | .iff, l, r =>
    ⟨l.positive * r.negative + l.negative * r.positive,
      (l.negative + r.positive) * (l.positive + r.negative)⟩

/-- The dual connective has the numbers of the negation. An `iff` is not taken apart when it is negated, and has
others. -/
theorem clauseCounts_of {op : Connective} (noIff : op ≠ .iff) (negated : Bool) (left right : ClauseCounts) :
    (if negated then op.dual else op).clauseCounts (left.of (negated && op.negatesLeft)) (right.of negated) =
      (op.clauseCounts left right).of negated := by
  cases negated with
  | false => rfl
  | true =>
    cases op with
    | and | or | implies => rfl
    | iff => contradiction

end Connective

namespace Formula

def clauseCounts : Formula → ClauseCounts
  | .var _ => ⟨1, 1⟩
  | .not arg => ⟨arg.clauseCounts.negative, arg.clauseCounts.positive⟩
  | .binary op left right => op.clauseCounts left.clauseCounts right.clauseCounts

theorem clauseCounts_congruent : Congruent fun f g => g.clauseCounts = f.clauseCounts where
  trans first second := second.trans first
  not same := by rw [clauseCounts, same, clauseCounts]
  binary op lefts rights := by rw [clauseCounts, lefts, rights, clauseCounts]

theorem clauseCounts_iffNode (node : Node Formula) :
    (iffNode node).clauseCounts = node.toFormula.clauseCounts := by
  unfold iffNode
  split <;> rfl

theorem clauseCounts_impliesNode (node : Node Formula) :
    (impliesNode node).clauseCounts = node.toFormula.clauseCounts := by
  unfold impliesNode
  split <;> rfl

theorem clauseCounts_readings {f : Formula} (noIff : f.Lacks .iff) (negated : Bool) :
    (f.readings.of negated).clauseCounts = f.clauseCounts.of negated := by
  induction f generalizing negated with
  | var name =>
    rw [readings_var]
    cases negated <;> rfl
  | not arg ih =>
    rw [readings_of_not, ih noIff, ← ClauseCounts.of_of_true]
    rfl
  | binary op left right ihl ihr =>
    obtain ⟨differs, lefts, rights⟩ := noIff
    rw [readings_of_binary, clauseCounts, ihl lefts, ihr rights, Connective.clauseCounts_of differs, clauseCounts]

theorem length_pairs (lefts rights : List Formula) : (pairs lefts rights).length = lefts.length * rights.length := by
  induction lefts with
  | nil => simp [pairs]
  | cons l lefts ih =>
    rw [pairs, List.flatMap_cons, List.length_append, List.length_map, ← pairs, ih, List.length_cons,
      Nat.succ_mul, Nat.add_comm]

theorem length_disjuncts (left right : Formula) :
    (disjuncts left right).length = (left.spine .and).length * (right.spine .and).length := by
  rcases disjuncts_cases left right with same | same
  · rw [same, length_pairs]
  · rw [same, length_pairs, Nat.mul_comm]

/-- The conjuncts of the result are as many as the clauses counted, none being dropped or merged. -/
theorem length_spine_distributeOr {f : Formula} (normal : Normal f) :
    (f.distributeOr.spine .and).length = f.clauseCounts.positive := by
  induction normal with
  | literal literal =>
    rw [literal.distributeOr, literal.spine]
    cases literal <;> rfl
  | and _ _ ihl ihr =>
    rw [distributeOr_binary_of_ne Connective.noConfusion, spine_binary_self, List.length_append, ihl, ihr]
    rfl
  | or _ _ ihl ihr =>
    rw [distributeOr_or, spine_disjoin, length_disjuncts, ihl, ihr]
    rfl

theorem length_spine_toCnf (f : Formula) : (f.toCnf.spine .and).length = f.clauseCounts.positive := by
  have lacks := withoutImplies_lacks (withoutIff_lacks f)
  have normal : Normal f.withoutIff.withoutImplies.nnf := (readings_normal lacks.1 lacks.2).1
  calc
    (f.toCnf.spine .and).length = f.withoutIff.withoutImplies.nnf.clauseCounts.positive :=
      length_spine_distributeOr normal
    _ = f.withoutIff.withoutImplies.clauseCounts.positive :=
      congrArg ClauseCounts.positive (clauseCounts_readings lacks.1 false)
    _ = f.withoutIff.clauseCounts.positive :=
      congrArg ClauseCounts.positive (clauseCounts_congruent.fold clauseCounts_impliesNode f.withoutIff)
    _ = f.clauseCounts.positive := congrArg ClauseCounts.positive (clauseCounts_congruent.fold clauseCounts_iffNode f)

end Formula

namespace Solver

open Formula

/-- A solver for any formula has just as many clauses as are counted on the formula. -/
theorem clauseCount_ofFormula (f : Formula) :
    ∃ s, ofFormula f = .ok s ∧ s.clauseCount = f.clauseCounts.positive := by
  have form := toCnf_conjunctive f
  obtain ⟨e, s, read, made, -, clauses⟩ := ofCnf_encoding form
  refine ⟨s, made, ?_⟩
  calc
    s.clauseCount = e.clauses.size := congrArg Array.size clauses
    _ = (f.toCnf.spine .and).length := Encoding.size_clauses read
    _ = f.clauseCounts.positive := length_spine_toCnf f

/-- A chain of `iff`s: each one more than doubles what its negation comes to. -/
example : (Formula.iff (.iff (.var "a") (.var "b")) (.var "c")).clauseCounts = ⟨6, 15⟩ := rfl

end Solver

end PropSat
