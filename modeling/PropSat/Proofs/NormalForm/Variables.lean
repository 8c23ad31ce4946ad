import PropSat.Proofs.NormalForm.Negations

/-!
The variables of a formula after each pass. Variables are numbered as they first occur, so a pass that brings in
names again behind their first occurrence leaves the numbering as it was; doing without `iff` does so, and the
other two passes before the distribution bring in no name a second time. The distribution may put a later operand
first, which changes the order of the variables but nothing else (`vars_passes`).
-/

namespace PropSat.Formula

/-- The names of the two are numbered alike, whatever names are numbered before. -/
def NumberedAlike (f g : Formula) : Prop := ∀ t : NameTable, t.internAll g.names = t.internAll f.names

theorem numberedAlike_congruent : Congruent NumberedAlike where
  trans first second t := (second t).trans (first t)
  not same := same
  binary op lefts rights t := by
    rw [names, NameTable.internAll_append, lefts, rights, names, NameTable.internAll_append]

theorem NumberedAlike.vars_eq {f g : Formula} (same : NumberedAlike f g) : g.vars = f.vars := by
  rw [Formula.vars_eq, same, Formula.vars_eq]

theorem iffNode_numberedAlike (node : Node Formula) : NumberedAlike node.toFormula (iffNode node) := by
  unfold iffNode
  split
  case h_1 left right =>
    intro t
    exact t.internAll_twice (left.names ++ right.names)
  case h_2 => exact fun t => rfl

theorem impliesNode_numberedAlike (node : Node Formula) : NumberedAlike node.toFormula (impliesNode node) := by
  unfold impliesNode
  split <;> exact fun t => rfl

theorem nnf_numberedAlike (f : Formula) : NumberedAlike f f.nnf := by
  intro t
  rw [nnf_names]

/-- The passes before the distribution keep the variables in the order of their first occurrence. Distribution keeps
them in some order, and so does the conversion altogether: it neither loses a variable nor brings in another. -/
theorem vars_passes (f : Formula) :
    f.withoutIff.vars = f.vars ∧
    f.withoutImplies.vars = f.vars ∧
    f.nnf.vars = f.vars ∧
    f.distributeOr.vars.Perm f.vars ∧
    f.toCnf.vars.Perm f.vars :=
  ⟨(numberedAlike_congruent.fold iffNode_numberedAlike f).vars_eq,
    (numberedAlike_congruent.fold impliesNode_numberedAlike f).vars_eq,
    (nnf_numberedAlike f).vars_eq,
    (Pass.apply_equivalent .distributeOr f).vars_perm,
    (Pass.applyAll_equivalent Pass.toNormalForm f).vars_perm⟩

/-- A lone right operand is paired from the left, and so its name comes first. -/
example : (Formula.or (.and (.var "b") (.var "c")) (.var "a")).distributeOr =
    .and (.or (.var "a") (.var "b")) (.or (.var "a") (.var "c")) := by
  cbv

end PropSat.Formula
