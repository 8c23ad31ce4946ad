import PropSat.Proofs.NormalForm.Distribution
import PropSat.Proofs.NormalForm.Negations

/-!
A formula in conjunctive form is left as it is. Each pass leaves a formula alone that has nothing for it to rewrite,
and none finds anything in this one: there is no `if` or `iff`, every `not` stands over a name, and no `or` joins an
`and`.
-/

namespace PropSat.Formula

/-- A formula in conjunctive form is built from literals, by `or` while it is a single conjunct and by `and`
after that. -/
theorem Conjunctive.induction {P : Formula → Prop} (literal : ∀ f, IsLiteral f → P f)
    (or : ∀ l r, l.spine .and = [l] → r.spine .and = [r] → P l → P r → P (.or l r))
    (and : ∀ l r, P l → P r → P (.and l r)) {f : Formula} (form : Conjunctive f) : P f := by
  induction f with
  | var name => exact literal _ (.var name)
  | not arg _ => exact literal _ (isLiteral_not_iff.2 (conjunctive_not_iff.1 form))
  | binary op left right ihl ihr =>
    by_cases isAnd : op = .and
    · subst isAnd
      obtain ⟨lefts, rights⟩ := conjunctive_and_iff.1 form
      exact and left right (ihl lefts) (ihr rights)
    · by_cases isOr : op = .or
      · subst isOr
        rw [Conjunctive, spine_binary_of_ne isAnd, List.forall_mem_singleton, spine_binary_self,
          List.forall_mem_append] at form
        obtain ⟨lefts, rights⟩ := form
        exact or left right (spine_and_of_literals lefts) (spine_and_of_literals rights)
          (ihl (conjunctive_of_literals lefts)) (ihr (conjunctive_of_literals rights))
      · exact absurd form (not_conjunctive isAnd isOr left right)

variable {f : Formula}

/-- A pass that rewrites one connective only leaves formulas without it as they are. -/
theorem fold_eq_of_lacks {combine : Node Formula → Formula} {op : Connective}
    (others : ∀ node, (∀ left right, node ≠ .binary op left right) → combine node = node.toFormula)
    (lacks : f.Lacks op) : f.fold combine = f := by
  induction f with
  | var name =>
    rw [fold_var]
    exact others _ nofun
  | not arg ih =>
    rw [fold_not, ih lacks]
    exact others _ nofun
  | binary op' left right ihl ihr =>
    obtain ⟨differs, lefts, rights⟩ := lacks
    rw [fold_binary, ihl lefts, ihr rights]
    exact others _ fun l r same => differs (Node.binary.inj same).1

theorem withoutIff_eq (lacks : f.Lacks .iff) : f.withoutIff = f := by
  refine fold_eq_of_lacks ?_ lacks
  intro node other
  unfold iffNode
  split
  case h_1 left right => exact absurd rfl (other left right)
  case h_2 => rfl

theorem withoutImplies_eq (lacks : f.Lacks .implies) : f.withoutImplies = f := by
  refine fold_eq_of_lacks ?_ lacks
  intro node other
  unfold impliesNode
  split
  case h_1 left right => exact absurd rfl (other left right)
  case h_2 => rfl

theorem Conjunctive.normal (form : Conjunctive f) : Normal f :=
  form.induction (fun _ => .literal) (fun _ _ _ _ => .or) fun _ _ => .and

theorem Conjunctive.joinsNoAnd (form : Conjunctive f) : f.Everywhere JoinsNoAnd := by
  apply form.induction
  · rintro _ (name | name)
    · exact (everywhere_var name).2 trivial
    · exact joinsNoAnd_not.2 ((everywhere_var name).2 trivial)
  · intro l r first second lefts rights
    exact joinsNoAnd_or.2 ⟨⟨first, second⟩, lefts, rights⟩
  · intro l r lefts rights
    exact (joinsNoAnd_binary_of_ne Connective.noConfusion).2 ⟨lefts, rights⟩

theorem Conjunctive.apply_eq (form : Conjunctive f) (pass : Pass) : pass.apply f = f := by
  obtain ⟨noImplies, noIff, only⟩ := normal_iff.1 form.normal
  cases pass with
  | withoutIff => exact withoutIff_eq noIff
  | withoutImplies => exact withoutImplies_eq noImplies
  | nnf => exact nnf_eq only
  | distributeOr => exact distributeOr_eq form.joinsNoAnd

theorem applyAll_eq {passes : List Pass} (each : ∀ pass ∈ passes, pass.apply f = f) :
    Pass.applyAll passes f = f := by
  induction passes with
  | nil => rfl
  | cons first rest ih =>
    obtain ⟨one, others⟩ := List.forall_mem_cons.1 each
    rw [Pass.applyAll, List.foldl_cons, one]
    exact ih others

theorem Conjunctive.toCnf_eq (form : Conjunctive f) : f.toCnf = f :=
  applyAll_eq fun pass _ => form.apply_eq pass

/-- Nothing else is left as it is, since conversion leads to this form. -/
theorem toCnf_eq_iff : f.toCnf = f ↔ Conjunctive f :=
  ⟨fun kept => kept ▸ f.toCnf_conjunctive, Conjunctive.toCnf_eq⟩

end PropSat.Formula
